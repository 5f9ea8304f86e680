/-
# The decoder is the reader's methods put together

Every method of the decoder is `ReadByte`, `PeekByte`, `ReadSlice('\n')`,
`ReadBytes('\n')` and `ReadFull(n)` of its reader, put together by the
`do` blocks of the source: bind, early `return`, checks that `throw`, and a
`switch` on the type byte. So a property of reader computations that those
five calls have and that `pure`, `throw` and `>>=` keep (`Closed`) holds of
every method of the decoder, at every fuel. The facts of this kind that the
development needs (how the decoder moves its reader, that its outcome is a
function of the bytes it reads) are each one instance of `Closed`.

Key definitions: `Closed`.
Key theorems: `Closed.decodeResp`, `Closed.decodeMultiBulk`.
-/
import Codis.Redis.Decoder

namespace Codis
namespace Redis

open Bufio2

/-- A property of reader computations that the reader calls the decoder
makes have, and that `pure`, `throw` and `>>=` keep. -/
structure Closed (P : ∀ {α : Type}, ReaderM α → Prop) : Prop where
  pure : ∀ {α : Type} (a : α), P (Pure.pure a : ReaderM α)
  throw : ∀ {α : Type} (e : Err), P (MonadExcept.throw e : ReaderM α)
  bind : ∀ {α β : Type} {x : ReaderM α} {f : α → ReaderM β}, P x → (∀ a, P (f a)) → P (x >>= f)
  readByte : P Reader.readByte
  peekByte : P Reader.peekByte
  readSlice : P (checked (Reader.readSlice 10))
  readBytes : P (Reader.readBytes 10)
  readFull : ∀ n, P (Reader.readFull n)

namespace Closed

variable {P : ∀ {α : Type}, ReaderM α → Prop} {α : Type}

theorem branch {c : Prop} [Decidable c] {x y : ReaderM α} (hx : P x) (hy : P y) :
    P (if c then x else y) := by
  split <;> assumption

variable (hP : Closed P)
include hP

theorem check {c : Prop} [Decidable c] {e : Err} {k : PUnit → ReaderM α} (hk : ∀ u, P (k u)) :
    P (if c then (MonadExcept.throw e : ReaderM PUnit) >>= k
      else (Pure.pure PUnit.unit : ReaderM PUnit) >>= k) :=
  branch (hP.bind (hP.throw _) hk) (hP.bind (hP.pure _) hk)

theorem decodeTextBytes : P decodeTextBytes :=
  hP.bind hP.readBytes fun _ => hP.check fun _ => hP.pure _

theorem decodeInt : P decodeInt := by
  refine hP.bind hP.readSlice fun _ => hP.check fun _ => ?_
  split
  · exact hP.pure _
  · exact hP.throw _

theorem decodeBulkBytes : P decodeBulkBytes :=
  hP.bind hP.decodeInt fun _ => hP.check fun _ => hP.check fun _ =>
    branch (hP.pure _) (hP.bind (hP.pure _) fun _ =>
      hP.bind (hP.readFull _) fun _ => hP.check fun _ => hP.pure _)

theorem decodeArrayItems {elem : ReaderM Resp} (he : P elem) : ∀ n, P (decodeArrayItems elem n)
  | 0 => hP.pure _
  | n + 1 => hP.bind he fun _ => hP.bind (decodeArrayItems he n) fun _ => hP.pure _

theorem decodeArray {elem : ReaderM Resp} (he : P elem) : P (decodeArray elem) :=
  hP.bind hP.decodeInt fun _ => hP.check fun _ => hP.check fun _ =>
    branch (hP.pure _) (hP.bind (hP.pure _) fun _ =>
      hP.bind (hP.decodeArrayItems he _) fun _ => hP.pure _)

/-- **Every `decodeResp` has the property**, by induction on the fuel. -/
theorem decodeResp : ∀ fuel, P (decodeResp fuel)
  | 0 => hP.throw _
  | fuel + 1 => by
    refine hP.bind hP.readByte fun t => ?_
    split
    · exact hP.bind hP.decodeTextBytes fun _ => hP.pure _
    · exact hP.bind hP.decodeTextBytes fun _ => hP.pure _
    · exact hP.bind hP.decodeTextBytes fun _ => hP.pure _
    · exact hP.bind hP.decodeBulkBytes fun _ => hP.pure _
    · exact hP.bind (hP.decodeArray (decodeResp fuel)) fun _ => hP.pure _
    · exact hP.throw _

theorem decodeSingleLineMultiBulk : P decodeSingleLineMultiBulk :=
  hP.bind hP.decodeTextBytes fun _ => hP.check fun _ => hP.pure _

theorem decodeMultiBulkItems {elem : ReaderM Resp} (he : P elem) :
    ∀ n, P (decodeMultiBulkItems elem n)
  | 0 => hP.pure _
  | n + 1 => hP.bind he fun _ => hP.check fun _ =>
    hP.bind (decodeMultiBulkItems he n) fun _ => hP.pure _

/-- **Every `decodeMultiBulk` has the property.** -/
theorem decodeMultiBulk (fuel : Nat) : P (decodeMultiBulk fuel) :=
  hP.bind hP.peekByte fun _ => branch hP.decodeSingleLineMultiBulk
    (hP.bind hP.readByte fun _ => hP.bind hP.decodeInt fun _ => hP.check fun _ => hP.check fun _ =>
      hP.decodeMultiBulkItems (hP.decodeResp fuel) _)

end Closed

end Redis
end Codis
