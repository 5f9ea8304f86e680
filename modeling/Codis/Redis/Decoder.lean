/-
# The RESP decoder

`Decoder` is the redis package's decoder: a `bufio2.Reader` and the sticky
error `Err`. The private methods run in `ReaderM` on the reader; `Decode`
and `DecodeMultiBulk` check and set the sticky error around them.

`decodeResp` and `decodeArray` call each other; here `decodeArray` takes the
element decoder as an argument, and `decodeResp` runs on fuel, one unit per
level of nesting. Each level reads its type byte first, so the number of
unread bytes bounds the depth, and `Decode` gives one more unit than that.

Key definitions: `decodeResp`, `Decoder.decode`, `Decoder.decodeMultiBulk`.
-/
import Codis.Bufio2.Reader
import Codis.Redis.Resp

namespace Codis
namespace Redis

open Bufio2

/-- `Decoder`. -/
structure Decoder where
  br : Reader
  err : Option Err

/-- `NewDecoderSize`. -/
def newDecoderSize (rd : Source) (size : Int) : Decoder := ⟨Reader.newReaderSize rd size, none⟩

/-- `NewDecoderBuffer`: a decoder over a reader the caller made. -/
def newDecoderBuffer (br : Reader) : Decoder := ⟨br, none⟩

/-- `x, err := f(); if err != nil { return err }`, for a reader method that
can return bytes together with its error. -/
def checked (f : Reader → (List UInt8 × Option Err) × Reader) : ReaderM (List UInt8) := fun b =>
  match (f b).1.2 with
  | some e => .error e (f b).2
  | none => .ok (f b).1.1 (f b).2

/-- `decodeTextBytes`: a line through LF, which must end in CRLF. -/
def decodeTextBytes : ReaderM (List UInt8) := do
  let b ← Reader.readBytes 10
  if b.length < 2 ∨ b.getD (b.length - 2) 0 ≠ 13 then throw .badCRLFEnd
  return b.take (b.length - 2)

/-- `decodeInt`: a line through LF from `ReadSlice`, which must end in CRLF,
parsed by `Btoi64`. -/
def decodeInt : ReaderM Int := do
  let b ← checked (Reader.readSlice 10)
  if b.length < 2 ∨ b.getD (b.length - 2) 0 ≠ 13 then throw .badCRLFEnd
  match btoi64 (b.take (b.length - 2)) with
  | .ok n => return n
  | .error e => throw e

/-- `decodeBulkBytes`: a length, then that many bytes and CRLF; `-1` is the
null bulk. -/
def decodeBulkBytes : ReaderM (Option (List UInt8)) := do
  let n ← decodeInt
  if n < -1 then throw .badBulkBytesLen
  if maxBulkBytesLen < n then throw .badBulkBytesLenTooLong
  if n = -1 then return none
  let b ← Reader.readFull (n.toNat + 2)
  if b.getD n.toNat 0 ≠ 13 ∨ b.getD (n.toNat + 1) 0 ≠ 10 then throw .badCRLFEnd
  return some (b.take n.toNat)

/-- The element loop of `decodeArray`: `n` elements, stopping at the first
error. -/
def decodeArrayItems (elem : ReaderM Resp) : Nat → ReaderM (List Resp)
  | 0 => pure []
  | k + 1 => do
    let r ← elem
    let rs ← decodeArrayItems elem k
    return r :: rs

/-- `decodeArray`, with `elem` for its calls of `decodeResp`: a length, then
that many frames; `-1` is the null array. -/
def decodeArray (elem : ReaderM Resp) : ReaderM (Option (List Resp)) := do
  let n ← decodeInt
  if n < -1 then throw .badArrayLen
  if maxArrayLen < n then throw .badArrayLenTooLong
  if n = -1 then return none
  return some (← decodeArrayItems elem n.toNat)

/-- `decodeResp`: the type byte, then its payload. -/
def decodeResp : Nat → ReaderM Resp
  | 0 => throw .exhausted
  | fuel + 1 => do
    let t ← Reader.readByte
    match t with
    | 43 => return .string (← decodeTextBytes)
    | 45 => return .error (← decodeTextBytes)
    | 58 => return .int (← decodeTextBytes)
    | 36 => return .bulkBytes (← decodeBulkBytes)
    | 42 => return .array (← decodeArray (decodeResp fuel))
    | _ => throw (.badRespType t)

/-- The fuel `Decode` and `DecodeMultiBulk` give `decodeResp`: one more than
the bytes left to read. -/
def Decoder.fuel (d : Decoder) : Nat := d.br.unread.length + 1

/-- `Decode`. -/
def Decoder.decode (d : Decoder) : Except Err Resp × Decoder :=
  match d.err with
  | some _ => (.error .failedDecoder, d)
  | none =>
    match decodeResp d.fuel d.br with
    | .ok r br => (.ok r, { d with br })
    | .error e br => (.error e, { br, err := some e })

/-- The loop of `decodeSingleLineMultiBulk`: `r` walks up to `len(b)`; at a
space or at the end, a non-empty `b[l:r]` becomes a bulk and `l` moves past
`r`. -/
def singleLineLoop (b : List UInt8) : Nat → Nat → Nat → List Resp → List Resp
  | 0, _, _, multi => multi
  | k + 1, l, r, multi =>
    if r = b.length ∨ b.getD r 0 = 32 then
      singleLineLoop b k (r + 1) (r + 1)
        (if l < r then multi ++ [.bulkBytes (some ((b.drop l).take (r - l)))] else multi)
    else singleLineLoop b k l (r + 1) multi

/-- `decodeSingleLineMultiBulk`: an inline command, one line split on spaces. -/
def decodeSingleLineMultiBulk : ReaderM (List Resp) := do
  let b ← decodeTextBytes
  let multi := singleLineLoop b (b.length + 1) 0 0 []
  if multi.length = 0 then throw .badMultiBulkLen
  return multi

/-- The element loop of `decodeMultiBulk`: every element must be a bulk. -/
def decodeMultiBulkItems (elem : ReaderM Resp) : Nat → ReaderM (List Resp)
  | 0 => pure []
  | k + 1 => do
    let r ← elem
    if !r.isBulkBytes then throw .badMultiBulkContent
    let rs ← decodeMultiBulkItems elem k
    return r :: rs

/-- `decodeMultiBulk`, with `fuel` for its calls of `decodeResp`: an array of
bulks after a `*`, an inline command otherwise. -/
def decodeMultiBulk (fuel : Nat) : ReaderM (List Resp) := do
  let t ← Reader.peekByte
  if t ≠ 42 then decodeSingleLineMultiBulk
  else
    let _ ← Reader.readByte
    let n ← decodeInt
    if n ≤ 0 then throw .badArrayLen
    if maxArrayLen < n then throw .badArrayLenTooLong
    decodeMultiBulkItems (decodeResp fuel) n.toNat

/-- `DecodeMultiBulk`. -/
def Decoder.decodeMultiBulk (d : Decoder) : Except Err (List Resp) × Decoder :=
  match d.err with
  | some _ => (.error .failedDecoder, d)
  | none =>
    match Redis.decodeMultiBulk d.fuel d.br with
    | .ok m br => (.ok m, { d with br })
    | .error e br => (.error e, { br, err := some e })

/-! ### Running `ReaderM` -/

theorem ok_of_bind {α β : Type} {x : ReaderM α} {f : α → ReaderM β} {s s' : Reader} {c : β}
    (h : (x >>= f) s = .ok c s') : ∃ a s₁, x s = .ok a s₁ ∧ f a s₁ = .ok c s' := by
  simp only [bind, EStateM.bind] at h
  split at h
  · exact ⟨_, _, ‹_›, h⟩
  · cases h

theorem checked_ok {f : Reader → (List UInt8 × Option Err) × Reader} {b b' : Reader}
    {x : List UInt8} (h : checked f b = .ok x b') : f b = ((x, none), b') := by
  unfold checked at h
  split at h
  · cases h
  · cases h; rename_i he; rw [← he]

end Redis
end Codis
